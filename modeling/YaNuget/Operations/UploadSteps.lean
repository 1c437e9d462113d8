import YaNuget.Concurrency.Triples
import YaNuget.Operations.ResumableUploads

/-!
# What the requests of an upload keep

Only one slot is ever given out while the upload can still be written, so the
request that has locked it is alone: the others find it locked, or find that the
upload is over. What the row counts is then at the front of the part file, and
is what a hasher in the slot has seen if it is as long.
-/
namespace YaNuget.Tus

open Concurrency Protocol

abbrev Moment := World Party Call Call.Answer Choice State

def Locked (t : ℕ) (s : State) : Prop := ∃ i, i < s.next ∧ (s.slots i).holder = some t

instance (t : ℕ) (s : State) : Decidable (Locked t s) :=
  inferInstanceAs (Decidable (∃ i, i < s.next ∧ (s.slots i).holder = some t))

/-- Request `t` holds the lock of the only slot there has been. -/
structure Exclusive (t : ℕ) (s : State) : Prop where
  next : s.next = 1
  registry : s.registry = some 0
  holder : (s.slots 0).holder = some t

/-- No request may begin to write. -/
def Closed (expires : ℕ) (s : State) : Prop :=
  s.row = none ∨ s.place ≠ .part ∨ expires ≤ s.now

/-- What is attached is all that was acknowledged, in its declared length and under its hash. -/
structure Whole (u : Upload) (acknowledged : Content) (a : Attachment) : Prop where
  bytes : a.bytes = acknowledged
  length : a.bytes.length = u.length
  size : a.size = u.length
  sha256 : a.sha256 = u.sha256 a.bytes
  expected : ∀ want ∈ u.expectedSha256, a.sha256 = want

/-- What a hasher has seen is as long as it says, and is what the row counts if that is as long. -/
structure Faithful (h : Hashing) (s : State) : Prop where
  length : h.seen.length = h.received
  seen : ∀ r ∈ s.row, h.received = r.received → h.seen = s.acknowledged

/-- Nothing that the row counts is lost. -/
structure Kept (u : Upload) (s : State) : Prop where
  late : s.late = []
  counted : ∀ r ∈ s.row, s.acknowledged.length = r.received
  stored : s.row ≠ none → s.acknowledged <+: s.content
  hashed : ∀ i, ∀ h ∈ (s.slots i).hashing, Faithful h s
  attached : ∀ a ∈ s.attached, s.row = none ∧ Whole u s.acknowledged a

def Once (s : State) : Prop := s.attached = [] ∨ s.place = .gone ∧ s.attached.length = 1

structure Invariant (u : Upload) (strict : Prop) (s : State) : Prop where
  writers : ∀ t, s.files t ≠ none → Exclusive t s
  phase : s.next = 0 ∧ s.registry = none ∨ s.next = 1 ∧ s.registry = some 0 ∨ Closed u.expires s
  registered : ∀ i ∈ s.registry, i < s.next
  fresh : ∀ i, s.next ≤ i → s.slots i = {}
  once : Once s
  kept : strict → Kept u s

/-- Under the lock, the database answers when it is asked for the upload, and the part file of an
upload that is complete is renamed. -/
def steady (s : State) (t : ℕ) (c : Call) (o : Choice) : Bool :=
  match c with
  | .request .getUpload => o.fails.isNone || !decide (Locked t s)
  | .request .rename => o.fails.isNone || decide (s.place ≠ .part)
  | _ => true

/-- Nothing takes effect after its request has gone on, and what is reported to be done is. -/
def Choice.prompt (o : Choice) : Bool :=
  decide (o.effect ≠ .later) && (o.fails.isSome || decide (o.effect = .now))

/-- What another request may do while `t` is at work. -/
structure Rely (strict : Prop) (t : ℕ) (s s' : State) : Prop where
  next : s.next ≤ s'.next
  lock : ∀ i, (s.slots i).holder = some t → s'.slots i = s.slots i
  file : s'.files t = s.files t
  place : s.place ≠ .part → s'.place ≠ .part
  now : s.now ≤ s'.now
  row : s.row = none → s'.row = none
  exclusive : Exclusive t s → s'.next = s.next ∧ s'.registry = s.registry
  kept : strict → Exclusive t s →
    s'.row = s.row ∧ s'.content = s.content ∧ s'.acknowledged = s.acknowledged

def protocol (u : Upload) (strict : Prop) : Protocol Party Call Call.Answer Choice State where
  inv w := Invariant u strict w.state
  guar p w w' := ∀ t, p ≠ .request t → w'.state.alive t = true →
    w.state.alive t = true ∧ Rely strict t w.state w'.state
  allow w e _ := (∀ t, e.thread = .request t → steady w.state t e.call e.choice = true) ∧
    (strict → e.choice.prompt = true)

variable {u : Upload} {strict : Prop} {s s' : State} {w w' : Moment} {o : Choice} {t v : ℕ}

/-- The effects that a call can have. -/
inductive Causes (t : ℕ) : Request → Effect → Prop
  | held (since : Option ℕ) : Causes t (.setUploadHeld since) (.held since)
  | received (n : ℕ) (sent : Content) (now : ℕ) :
      Causes t (.setUploadReceived n sent) (.received n sent now)
  | delete : Causes t .deleteUpload .delete
  | length (n : ℕ) : Causes t (.setLen n) (.length n)
  | write (offset : ℕ) {bytes chunk : Content} : bytes <+: chunk →
      Causes t (.writeAll offset chunk) (.write offset bytes)
  | remove : Causes t .removePart .remove
  | rename : Causes t .rename (.rename t)
  | removeFinished : Causes t .removeFinished (.removeFinished t)
  | attach (sha256 : Text) (size : ℕ) : Causes t (.attach sha256 size) (.attach t sha256 size)

inductive Does (t : ℕ) (o : Choice) (s : State) : Call → State → Prop
  | nothing (c : Call) : Does t o s c s
  | arrives : Does t o s .arrive { s with
      arrived := Function.update s.arrived t true
      alive := Function.update s.alive t true }
  | makes : s.registry = none →
      Does t o s .slot { s with registry := some s.next, next := s.next + 1 }
  | locks {i : ℕ} : (s.slots i).holder = none →
      Does t o s (.tryLock i) (s.setSlot i { s.slots i with holder := some t })
  | forgets : Does t o s .forgetSlot { s with registry := none }
  | unlocks {i : ℕ} : (s.slots i).holder = some t →
      Does t o s (.unlock i) (s.setSlot i { s.slots i with holder := none })
  | hashes (i : ℕ) (h : Option Hashing) :
      Does t o s (.setHashing i h) (s.setSlot i { s.slots i with hashing := h })
  | opens : s.place = .part → Does t o s (.request .openForWriting) (s.setFile t (some false))
  | closes : Does t o s .close (s.setFile t none)
  | reports (c : Call) : s.files t = some true → Does t o s c (s.setFile t (some false))
  | detaches : Does t o s .detach { s with detached := Function.update s.detached t true }
  | takesEffect {r : Request} {e : Effect} : Causes t r e → Does t o s (.request r) (s.apply e)
  | queues {r : Request} {e : Effect} : Causes t r e → o.effect = .later →
      Does t o s (.request r) { s with late := e :: s.late }
  | loses {offset : ℕ} {bytes chunk : Content} : bytes <+: chunk → o.prompt = false →
      Does t o s (.request (.writeAll offset chunk))
        ((s.apply (.write offset bytes)).setFile t (some true))

theorem change_does {r : Request} {e : Effect} {a : Except IoError Unit} (hcauses : Causes t r e)
    (h : s.change o e = (a, s')) : Does t o s (.request r) s' := by
  unfold State.change at h
  cases hfails : o.fails with
  | none =>
    rw [hfails] at h
    cases h
    exact .takesEffect hcauses
  | some why =>
    rw [hfails] at h
    cases heffect : o.effect with
    | never =>
      rw [heffect] at h
      cases h
      exact .nothing _
    | now =>
      rw [heffect] at h
      cases h
      exact .takesEffect hcauses
    | later =>
      rw [heffect] at h
      cases h
      exact .queues hcauses heffect

theorem changeIf_does {p : Prop} [Decidable p] {r : Request} {e : Effect}
    {a : Except IoError Unit} (hcauses : Causes t r e) (h : s.changeIf p o e = (a, s')) :
    Does t o s (.request r) s' := by
  unfold State.changeIf at h
  split_ifs at h
  · exact change_does hcauses h
  · cases h
    exact .nothing _

theorem tries_state {α : Type} {x : α} {a : Except IoError α} (h : s.tries o x = (a, s')) :
    s' = s := by
  unfold State.tries at h
  split at h <;> cases h <;> rfl

theorem report_does {c : Call} {a : Except IoError Unit} (h : s.report t o = (a, s')) :
    Does t o s c s' := by
  unfold State.report at h
  split_ifs at h with hlost
  · cases h
    exact .reports c hlost
  · obtain rfl := tries_state h
    exact .nothing c

theorem write_does {offset : ℕ} {chunk : Content} {a : Except IoError Unit}
    (h : s.write t o offset chunk = (a, s')) :
    Does t o s (.request (.writeAll offset chunk)) s' := by
  unfold State.write at h
  split_ifs at h with hlost
  · cases h
    exact .reports _ hlost
  · have hpart : chunk.take o.count <+: chunk := List.take_prefix _ _
    split at h
    next => cases h; exact .takesEffect (.write offset List.prefix_rfl)
    next hfails heffect =>
      cases h
      exact .loses hpart (by simp [Choice.prompt, hfails, heffect])
    next heffect => cases h; exact .queues (.write offset List.prefix_rfl) heffect
    next heffect => cases h; exact .queues (.write offset List.prefix_rfl) heffect
    next => cases h; exact .takesEffect (.write offset hpart)

theorem answer_does {expires : ℕ} {r : Request} {a : Except IoError r.Answer}
    (h : s.answer expires t o r = (a, s')) : Does t o s (.request r) s' := by
  have reads : s' = s → Does t o s (.request r) s' := fun hs => hs ▸ .nothing _
  cases r with
  | getUpload | expiredUploads | check | readPart | seek => exact reads (tries_state h)
  | openPart =>
    simp only [State.answer] at h
    split_ifs at h
    · exact reads (tries_state h)
    · cases h
      exact .nothing _
  | setUploadHeld since => exact change_does (.held since) h
  | setUploadReceived n sent => exact change_does (.received n sent s.now) h
  | deleteUpload => exact change_does .delete h
  | openForWriting =>
    simp only [State.answer] at h
    split_ifs at h with hopens
    · cases h
      exact .opens hopens.1
    · cases h
      exact .nothing _
  | setLen n => exact change_does (.length n) h
  | writeAll offset chunk => exact write_does h
  | flush | syncAll => exact report_does h
  | removePart => exact changeIf_does .remove h
  | rename => exact changeIf_does .rename h
  | removeFinished => exact change_does .removeFinished h
  | attach sha256 size => exact changeIf_does (.attach sha256 size) h

theorem act_does {expires : ℕ} {c : Call} {a : c.Answer}
    (h : s.act expires t o c = some (a, s')) : Does t o s c s' := by
  cases c with
  | arrive => cases h; exact .arrives
  | request r => exact answer_does (Option.some.inj h)
  | now | hashing => cases h; exact .nothing _
  | slot =>
    simp only [State.act] at h
    split at h
    next => cases h; exact .nothing _
    next hnone => cases h; exact .makes hnone
  | tryLock i =>
    simp only [State.act] at h
    split at h
    next => cases h; exact .nothing _
    next hnone => cases h; exact .locks hnone
  | forgetSlot => cases h; exact .forgets
  | unlock i =>
    simp only [State.act] at h
    split_ifs at h with hholds
    · cases h
      exact .unlocks hholds
    · cases h
      exact .nothing _
  | setHashing i hashing => cases h; exact .hashes i hashing
  | close => cases h; exact .closes
  | detach => cases h; exact .detaches
  | happens e => cases h

theorem exec_request {expires : ℕ} {c : Call} {a : c.Answer} :
    exec expires (.request t) c o s = some (a, s') ↔
      s.admits t c = true ∧ s.act expires t o c = some (a, s') := by
  simp [exec]

theorem exec_happens {expires : ℕ} {h : Happening} {a : Unit}
    (hexec : (machine expires).exec .environment (.happens h) o s = some (a, s')) :
    s' = s.happen h :=
  (Prod.mk.inj (Option.some.inj hexec)).2.symm

/-- The same in the memory of the process. -/
structure SameMemory (s s' : State) : Prop where
  registry : s'.registry = s.registry
  slots : s'.slots = s.slots
  next : s'.next = s.next
  alive : s'.alive = s.alive
  files : s'.files = s.files
  late : s'.late = s.late
  now : s'.now = s.now

theorem apply_memory (s : State) (e : Effect) : SameMemory s (s.apply e) := by
  cases e with
  | held | delete | length | write => constructor <;> rfl
  | received n sent now =>
    simp only [State.apply]
    split <;> constructor <;> rfl
  | remove | rename | removeFinished | attach =>
    simp only [State.apply]
    split_ifs <;> constructor <;> rfl

theorem apply_row_none {e : Effect} (h : s.row = none) : (s.apply e).row = none := by
  cases e with
  | held since => simp [State.apply, h]
  | received n sent now => simp [State.apply, h]
  | delete => rfl
  | length | write => exact h
  | remove | rename | removeFinished | attach =>
    simp only [State.apply]
    split_ifs <;> exact h

theorem apply_place {e : Effect} (h : s.place ≠ .part) : (s.apply e).place ≠ .part := by
  cases e with
  | held | delete | length | write => exact h
  | received n sent now =>
    simp only [State.apply]
    split <;> exact h
  | remove | rename => simp [State.apply, h]
  | removeFinished t | attach t sha256 size =>
    simp only [State.apply]
    split_ifs
    · exact nofun
    · exact h

theorem Closed.apply {expires : ℕ} (h : Closed expires s) (e : Effect) :
    Closed expires (s.apply e) := by
  rcases h with hrow | hplace | hnow
  · exact Or.inl (apply_row_none hrow)
  · exact Or.inr (Or.inl (apply_place hplace))
  · refine Or.inr (Or.inr ?_)
    rw [(apply_memory s e).now]
    exact hnow

theorem Exclusive.congr (h : Exclusive t s) (hm : SameMemory s s') : Exclusive t s' :=
  ⟨hm.next.trans h.next, hm.registry.trans h.registry, by rw [hm.slots]; exact h.holder⟩

/-- What is attached is taken away from where it was, so this happens once. -/
theorem Once.apply (h : Once s) (e : Effect) : Once (s.apply e) := by
  unfold Once at h ⊢
  cases e with
  | held | delete | length | write => exact h
  | received n sent now =>
    simp only [State.apply]
    split <;> exact h
  | remove | rename | removeFinished =>
    simp only [State.apply]
    split_ifs with hplace
    · rcases h with hnone | hgone
      · exact Or.inl hnone
      · rw [hplace] at hgone
        cases hgone.1
    · exact h
  | attach t sha256 size =>
    simp only [State.apply]
    split_ifs with hplace
    · rcases h with hnone | hgone
      · simp [hnone]
      · rw [hplace] at hgone
        cases hgone.1
    · exact h

theorem Once.does {c : Call} (h : Once s) (hdoes : Does t o s c s') : Once s' := by
  cases hdoes with
  | takesEffect => exact h.apply _
  | loses =>
    rename_i offset bytes _ _ _
    have hwritten : Once (s.apply (.write offset bytes)) := h.apply _
    exact hwritten
  | _ => exact h

theorem Once.happens (h : Once s) (happening : Happening) : Once (s.happen happening) := by
  cases happening with
  | tick n => exact h
  | cancel v =>
    simp only [State.happen]
    split_ifs <;> exact h
  | restart =>
    rcases h with hnone | ⟨hgone, hlength⟩
    · exact Or.inl hnone
    · refine Or.inr ⟨?_, hlength⟩
      simp [State.happen, hgone]
  | land k =>
    simp only [State.happen]
    cases hlate : s.late[k]? with
    | none => exact h
    | some e =>
      have hlanded : Once { s with late := s.late.eraseIdx k } := h
      exact hlanded.apply e

/-- What an effect must be to lose nothing. -/
def Careful (u : Upload) (s : State) : Effect → Prop
  | .received n sent _ => ∀ r ∈ s.row, n = r.received + sent.length ∧
      s.acknowledged ++ sent <+: s.content ∧
      ∀ i, ∀ h ∈ (s.slots i).hashing, h.received = n → h.seen = s.acknowledged ++ sent
  | .length n => ∀ r ∈ s.row, n = r.received
  | .write offset _ => ∀ r ∈ s.row, r.received ≤ offset
  | .attach _ sha256 size => s.row = none ∧ Whole u s.acknowledged ⟨s.content, sha256, size⟩
  | _ => True

/-- What request `t` must know before a call. -/
def Duty (u : Upload) (strict : Prop) (t : ℕ) (s : State) : Call → Prop
  | .tryLock i => i < s.next
  | .forgetSlot => Locked t s ∧ s.files t = none ∧ Closed u.expires s
  | .unlock _ => s.files t = none
  | .setHashing i hashing => (s.slots i).holder = some t ∧ (strict → ∀ h ∈ hashing, Faithful h s)
  | .request .openForWriting => s.place = .part → Exclusive t s
  | .request (.writeAll offset _) => s.files t ≠ none ∧ (strict → ∀ r ∈ s.row, r.received ≤ offset)
  | .request r => ∀ e, Causes t r e →
      (e ≠ .removeFinished t → Locked t s) ∧ (strict → Careful u s e)
  | _ => True

theorem Exclusive.locked (h : Exclusive t s) : Locked t s :=
  ⟨0, by rw [h.next]; exact Nat.zero_lt_one, h.holder⟩

theorem Exclusive.unique (h : Exclusive t s) (hv : Locked v s) : v = t := by
  obtain ⟨i, hi, hholder⟩ := hv
  rw [h.next] at hi
  obtain rfl : i = 0 := by omega
  exact Option.some.inj (hholder.symm.trans h.holder)

/-- Who may change the row and the part file holds a lock. -/
theorem Duty.effect {r : Request} {e : Effect} (hinv : Invariant u strict s)
    (hduty : Duty u strict t s (.request r)) (hcauses : Causes t r e) :
    (e ≠ .removeFinished t → Locked t s) ∧ (strict → Careful u s e) := by
  cases hcauses with
  | write offset hbytes => exact ⟨fun _ => (hinv.writers t hduty.1).locked, hduty.2⟩
  | held since => exact hduty _ (.held since)
  | received n sent now => exact hduty _ (.received n sent now)
  | delete => exact hduty _ .delete
  | length n => exact hduty _ (.length n)
  | remove => exact hduty _ .remove
  | rename => exact hduty _ .rename
  | removeFinished => exact hduty _ .removeFinished
  | attach sha256 size => exact hduty _ (.attach sha256 size)

theorem prefix_resized {ack content : Content} (h : ack <+: content) {n : ℕ}
    (hn : ack.length ≤ n) : ack <+: resized content n :=
  (List.prefix_take_iff.mpr ⟨h, hn⟩).trans (List.prefix_append _ _)

theorem overwritten_prefix {ack content : Content} (h : ack <+: content) {offset : ℕ}
    (hoffset : ack.length ≤ offset) (bytes : Content) :
    ack <+: overwritten content offset bytes := by
  unfold overwritten
  rw [List.append_assoc]
  exact (prefix_resized h hoffset).trans (List.prefix_append _ _)

/-- What is acknowledged stays the same, and is still stored. -/
theorem Kept.carry (hkept : Kept u s) (hlate : s'.late = s.late)
    (hslots : ∀ i, (s'.slots i).hashing = (s.slots i).hashing)
    (hack : s'.acknowledged = s.acknowledged) (hattached : s'.attached = s.attached)
    (hrow : ∀ r' ∈ s'.row, ∃ r ∈ s.row, r.received = r'.received)
    (hcontent : s'.row ≠ none → s.acknowledged <+: s'.content) : Kept u s' := by
  have hnone : s.row = none → s'.row = none := by
    intro hr
    by_contra hr'
    obtain ⟨r', hr'⟩ := Option.ne_none_iff_exists'.mp hr'
    obtain ⟨r, hr₀, -⟩ := hrow r' hr'
    rw [hr] at hr₀
    cases hr₀
  constructor
  · exact hlate.trans hkept.late
  · intro r' hr'
    obtain ⟨r, hr, hreceived⟩ := hrow r' hr'
    rw [hack, ← hreceived]
    exact hkept.counted r hr
  · intro hr'
    rw [hack]
    exact hcontent hr'
  · intro i h hh
    rw [hslots] at hh
    have hfaithful := hkept.hashed i h hh
    refine ⟨hfaithful.length, fun r' hr' hsame => ?_⟩
    obtain ⟨r, hr, hreceived⟩ := hrow r' hr'
    rw [hack]
    exact hfaithful.seen r hr (hsame.trans hreceived.symm)
  · intro a ha
    rw [hattached] at ha
    obtain ⟨hr, hwhole⟩ := hkept.attached a ha
    exact ⟨hnone hr, hack ▸ hwhole⟩

theorem Kept.received {n now : ℕ} {sent : Content} (hkept : Kept u s)
    (hcareful : Careful u s (.received n sent now)) :
    Kept u (s.apply (.received n sent now)) := by
  cases hrow : s.row with
  | none =>
    have hsame : s.apply (.received n sent now) = s := by simp [State.apply, hrow]
    rw [hsame]
    exact hkept
  | some r =>
    obtain ⟨hn, hstored, hhashed⟩ := hcareful r hrow
    have hlength := hkept.counted r hrow
    have hack : (s.apply (.received n sent now)).acknowledged = s.acknowledged ++ sent := by
      simp only [State.apply, hrow]
      rw [List.take_of_length_le (by omega)]
    have hrow' : (s.apply (.received n sent now)).row = some ⟨n, some now⟩ := by
      simp [State.apply, hrow]
    have hcontent : (s.apply (.received n sent now)).content = s.content := by
      simp [State.apply, hrow]
    have hattached : (s.apply (.received n sent now)).attached = s.attached := by
      simp [State.apply, hrow]
    have hm := apply_memory s (.received n sent now)
    constructor
    · exact hm.late.trans hkept.late
    · rintro r' hr'
      rw [hrow', Option.mem_def, Option.some.injEq] at hr'
      subst hr'
      rw [hack, List.length_append, hlength, hn]
    · intro _
      rw [hack, hcontent]
      exact hstored
    · intro i h hh
      rw [hm.slots] at hh
      refine ⟨(hkept.hashed i h hh).length, fun r' hr' hsame => ?_⟩
      rw [hrow', Option.mem_def, Option.some.injEq] at hr'
      rw [hack]
      exact hhashed i h hh (by rw [hsame, ← hr'])
    · intro a ha
      rw [hattached] at ha
      have hnone := (hkept.attached a ha).1
      rw [hrow] at hnone
      cases hnone

/-- A careful effect loses nothing that the row counts. -/
theorem Kept.apply {e : Effect} (hkept : Kept u s) (hcareful : Careful u s e) :
    Kept u (s.apply e) := by
  have same : ∀ r ∈ s.row, ∃ r₀ ∈ s.row, r₀.received = r.received := fun r hr => ⟨r, hr, rfl⟩
  have length : ∀ n, (∀ r ∈ s.row, r.received ≤ n) → s.row ≠ none → s.acknowledged.length ≤ n := by
    intro n hn hrow
    obtain ⟨r, hr⟩ := Option.ne_none_iff_exists'.mp hrow
    rw [hkept.counted r hr]
    exact hn r hr
  cases e with
  | received n sent now => exact hkept.received hcareful
  | held since =>
    refine hkept.carry rfl (fun _ => rfl) rfl rfl ?_ ?_
    · intro r' hr'
      obtain ⟨r, hr, rfl⟩ := Option.map_eq_some_iff.mp hr'
      exact ⟨r, hr, rfl⟩
    · intro hrow'
      exact hkept.stored fun hrow => hrow' (by simp [State.apply, hrow])
  | delete => exact hkept.carry rfl (fun _ => rfl) rfl rfl nofun fun h => absurd rfl h
  | length n =>
    refine hkept.carry rfl (fun _ => rfl) rfl rfl same fun hrow => ?_
    have hle : s.acknowledged.length ≤ n :=
      length n (fun r hr => Nat.le_of_eq (hcareful r hr).symm) hrow
    exact prefix_resized (hkept.stored hrow) hle
  | write offset bytes =>
    refine hkept.carry rfl (fun _ => rfl) rfl rfl same fun hrow => ?_
    exact overwritten_prefix (hkept.stored hrow) (length offset hcareful hrow) bytes
  | remove | rename | removeFinished =>
    simp only [State.apply]
    split_ifs
    · exact hkept.carry rfl (fun _ => rfl) rfl rfl same hkept.stored
    · exact hkept
  | attach t sha256 size =>
    simp only [State.apply]
    split_ifs
    · obtain ⟨hrow, hwhole⟩ := hcareful
      have hashed : ∀ i, ∀ h ∈ (s.slots i).hashing, Faithful h s := hkept.hashed
      refine ⟨hkept.late, hkept.counted, hkept.stored,
        fun i h hh => ⟨(hashed i h hh).length, (hashed i h hh).seen⟩, fun a ha => ?_⟩
      rcases List.mem_cons.mp ha with rfl | hbefore
      · exact ⟨hrow, hwhole⟩
      · exact hkept.attached a hbefore
    · exact hkept

theorem Invariant.apply {e : Effect} (hinv : Invariant u strict s)
    (hcareful : strict → Careful u s e) : Invariant u strict (s.apply e) := by
  have hm := apply_memory s e
  constructor
  · intro t ht
    rw [hm.files] at ht
    exact (hinv.writers t ht).congr hm
  · rw [hm.next, hm.registry]
    rcases hinv.phase with hnone | hone | hclosed
    · exact Or.inl hnone
    · exact Or.inr (Or.inl hone)
    · exact Or.inr (Or.inr (hclosed.apply e))
  · rw [hm.registry, hm.next]
    exact hinv.registered
  · rw [hm.next, hm.slots]
    exact hinv.fresh
  · exact hinv.once.apply e
  · intro hstrict
    exact (hinv.kept hstrict).apply (hcareful hstrict)

section Memory

theorem Kept.of_same (hkept : Kept u s) (hlate : s'.late = s.late)
    (hslots : ∀ i, (s'.slots i).hashing = (s.slots i).hashing) (hrow : s'.row = s.row)
    (hcontent : s'.content = s.content) (hack : s'.acknowledged = s.acknowledged)
    (hattached : s'.attached = s.attached) : Kept u s' := by
  apply hkept.carry hlate hslots hack hattached
  · rw [hrow]
    exact fun r hr => ⟨r, hr, rfl⟩
  · rw [hrow, hcontent]
    exact hkept.stored

theorem Kept.setHolder {i : ℕ} {holder : Option ℕ} (hkept : Kept u s) :
    Kept u (s.setSlot i { s.slots i with holder := holder }) := by
  refine hkept.of_same rfl (fun j => ?_) rfl rfl rfl rfl
  by_cases hj : j = i
  · subst hj
    simp [State.setSlot]
  · simp [State.setSlot, hj]

theorem Exclusive.setSlot {i : ℕ} {slot : Slot} (h : Exclusive t s) (hi : 0 ≠ i) :
    Exclusive t (s.setSlot i slot) :=
  ⟨h.next, h.registry, by simp [State.setSlot, hi, h.holder]⟩

theorem Exclusive.setHashing {i : ℕ} {hashing : Option Hashing} (h : Exclusive t s) :
    Exclusive t (s.setSlot i { s.slots i with hashing := hashing }) := by
  by_cases hi : 0 = i
  · subst hi
    exact ⟨h.next, h.registry, by simp [State.setSlot, h.holder]⟩
  · exact h.setSlot hi

theorem Invariant.bound {i : ℕ} (hinv : Invariant u strict s)
    (hholder : (s.slots i).holder = some t) : i < s.next := by
  by_contra hi
  rw [hinv.fresh i (Nat.not_lt.mp hi)] at hholder
  cases hholder

theorem Invariant.fresh_setSlot {i : ℕ} {slot : Slot} (hinv : Invariant u strict s)
    (hi : i < s.next) : ∀ j, s.next ≤ j → (s.setSlot i slot).slots j = {} := by
  intro j hj
  have hne : j ≠ i := by
    rintro rfl
    exact absurd hi (Nat.not_lt.mpr hj)
  simp only [State.setSlot, Function.update_of_ne hne]
  exact hinv.fresh j hj

theorem Invariant.locks {i : ℕ} (hinv : Invariant u strict s) (hi : i < s.next)
    (hfree : (s.slots i).holder = none) :
    Invariant u strict (s.setSlot i { s.slots i with holder := some t }) := by
  constructor
  · intro v hv
    have hex := hinv.writers v hv
    have hne : 0 ≠ i := by
      rintro rfl
      rw [hex.holder] at hfree
      cases hfree
    exact hex.setSlot hne
  · exact hinv.phase
  · exact hinv.registered
  · exact hinv.fresh_setSlot hi
  · exact hinv.once
  · exact fun hstrict => (hinv.kept hstrict).setHolder

/-- The lock of a slot is released by a request that does not write. -/
theorem Invariant.unlocks {i : ℕ} (hinv : Invariant u strict s) (hfile : s.files t = none)
    (hholder : (s.slots i).holder = some t) :
    Invariant u strict (s.setSlot i { s.slots i with holder := none }) := by
  constructor
  · intro v hv
    have hex := hinv.writers v hv
    have hne : 0 ≠ i := by
      rintro rfl
      obtain rfl : v = t := Option.some.inj (hex.holder.symm.trans hholder)
      exact hv hfile
    exact hex.setSlot hne
  · exact hinv.phase
  · exact hinv.registered
  · exact hinv.fresh_setSlot (hinv.bound hholder)
  · exact hinv.once
  · exact fun hstrict => (hinv.kept hstrict).setHolder

theorem Invariant.hashes {i : ℕ} {hashing : Option Hashing} (hinv : Invariant u strict s)
    (hholder : (s.slots i).holder = some t) (hfaithful : strict → ∀ h ∈ hashing, Faithful h s) :
    Invariant u strict (s.setSlot i { s.slots i with hashing := hashing }) := by
  constructor
  · intro v hv
    have hex := hinv.writers v hv
    exact hex.setHashing
  · exact hinv.phase
  · exact hinv.registered
  · exact hinv.fresh_setSlot (hinv.bound hholder)
  · exact hinv.once
  · intro hstrict
    have hkept := hinv.kept hstrict
    refine ⟨hkept.late, hkept.counted, hkept.stored, fun j h hh => ?_, hkept.attached⟩
    by_cases hj : j = i
    · subst hj
      have hh' : h ∈ hashing := by simpa [State.setSlot] using hh
      exact ⟨(hfaithful hstrict h hh').length, (hfaithful hstrict h hh').seen⟩
    · have hh' : h ∈ (s.slots j).hashing := by simpa [State.setSlot, hj] using hh
      exact ⟨(hkept.hashed j h hh').length, (hkept.hashed j h hh').seen⟩

/-- A file is opened by the only request that may write, or closed. -/
theorem Invariant.setFile {f : Option Bool} (hinv : Invariant u strict s)
    (hf : f ≠ none → Exclusive t s) : Invariant u strict (s.setFile t f) := by
  refine ⟨fun v hv => ?_, hinv.phase, hinv.registered, hinv.fresh, hinv.once, fun hstrict => ?_⟩
  · by_cases hvt : v = t
    · subst hvt
      have hex := hf (by simpa [State.setFile] using hv)
      exact ⟨hex.next, hex.registry, hex.holder⟩
    · have hex := hinv.writers v (by simpa [State.setFile, hvt] using hv)
      exact ⟨hex.next, hex.registry, hex.holder⟩
  · exact (hinv.kept hstrict).of_same rfl (fun _ => rfl) rfl rfl rfl rfl

/-- The first slot is the only one, unless the upload is closed. -/
theorem Invariant.makes (hinv : Invariant u strict s) (hnone : s.registry = none) :
    Invariant u strict { s with registry := some s.next, next := s.next + 1 } := by
  refine ⟨fun v hv => ?_, ?_, ?_, fun i hi => hinv.fresh i (by simp at hi; omega), hinv.once,
    fun hstrict => (hinv.kept hstrict).of_same rfl (fun _ => rfl) rfl rfl rfl rfl⟩
  · have hregistry := (hinv.writers v hv).registry
    rw [hnone] at hregistry
    cases hregistry
  · rcases hinv.phase with ⟨hnext, -⟩ | ⟨-, hregistry⟩ | hclosed
    · exact Or.inr (Or.inl ⟨by simp [hnext], by simp [hnext]⟩)
    · rw [hnone] at hregistry
      cases hregistry
    · exact Or.inr (Or.inr hclosed)
  · intro i hi
    obtain rfl : s.next = i := Option.some.inj hi
    exact Nat.lt_succ_self _

theorem Invariant.forgets (hinv : Invariant u strict s) (hlocked : Locked t s)
    (hfile : s.files t = none) (hclosed : Closed u.expires s) :
    Invariant u strict { s with registry := none } := by
  refine ⟨fun v hv => ?_, Or.inr (Or.inr hclosed), nofun, hinv.fresh, hinv.once,
    fun hstrict => (hinv.kept hstrict).of_same rfl (fun _ => rfl) rfl rfl rfl rfl⟩
  obtain rfl : t = v := (hinv.writers v hv).unique hlocked
  exact absurd hfile hv

end Memory

/-- A call before which a request knows what it must keeps the invariant. -/
theorem Invariant.does {c : Call} (hinv : Invariant u strict s) (hdoes : Does t o s c s')
    (hduty : Duty u strict t s c) (hprompt : strict → o.prompt = true) :
    Invariant u strict s' := by
  have same : ∀ s₁ : State, s₁.registry = s.registry → s₁.slots = s.slots → s₁.next = s.next →
      s₁.files = s.files → s₁.place = s.place → s₁.row = s.row → s₁.now = s.now →
      s₁.attached = s.attached → (strict → Kept u s₁) → Invariant u strict s₁ := by
    intro s₁ hregistry hslots hnext hfiles hplace hrow hnow hattached hkept
    refine ⟨fun v hv => ?_, ?_, ?_, ?_, ?_, hkept⟩
    · rw [hfiles] at hv
      have hex := hinv.writers v hv
      exact ⟨hnext.trans hex.next, hregistry.trans hex.registry, by rw [hslots]; exact hex.holder⟩
    · simpa only [Closed, hnext, hregistry, hrow, hplace, hnow] using hinv.phase
    · simpa only [hnext, hregistry] using hinv.registered
    · simpa only [hnext, hslots] using hinv.fresh
    · simpa only [Once, hplace, hattached] using hinv.once
  cases hdoes with
  | nothing => exact hinv
  | arrives | detaches =>
    exact same _ rfl rfl rfl rfl rfl rfl rfl rfl fun hstrict =>
      (hinv.kept hstrict).of_same rfl (fun _ => rfl) rfl rfl rfl rfl
  | makes hnone => exact hinv.makes hnone
  | locks hfree => exact hinv.locks hduty hfree
  | forgets => exact hinv.forgets hduty.1 hduty.2.1 hduty.2.2
  | unlocks hholder => exact hinv.unlocks hduty hholder
  | hashes i hashing => exact hinv.hashes hduty.1 hduty.2
  | opens hplace => exact hinv.setFile fun _ => hduty hplace
  | closes => exact hinv.setFile fun h => absurd rfl h
  | reports _ hlost => exact hinv.setFile fun _ => hinv.writers t (by simp [hlost])
  | takesEffect hcauses => exact hinv.apply fun hstrict => (hduty.effect hinv hcauses).2 hstrict
  | queues hcauses hlater =>
    refine same _ rfl rfl rfl rfl rfl rfl rfl rfl fun hstrict => ?_
    simp [Choice.prompt, hlater] at hprompt
    exact absurd hstrict hprompt
  | loses hbytes hlost =>
    have hcareful := (hduty.effect hinv (.write _ hbytes)).2
    refine (hinv.apply hcareful).setFile fun _ => ?_
    exact (hinv.writers t hduty.1).congr (apply_memory _ _)

/-- What one request does leaves to the others what they rely on. -/
theorem Rely.does {c : Call} (hinv : Invariant u strict s) (hdoes : Does v o s c s')
    (hduty : Duty u strict v s c) (hne : v ≠ t) (halive : s'.alive t = true) :
    s.alive t = true ∧ Rely strict t s s' := by
  have same : ∀ s₁ : State, s₁.slots = s.slots → s₁.next = s.next → s₁.registry = s.registry →
      s₁.files t = s.files t → s₁.place = s.place → s₁.row = s.row → s₁.now = s.now →
      s₁.content = s.content → s₁.acknowledged = s.acknowledged → Rely strict t s s₁ := by
    intro s₁ hslots hnext hregistry hfile hplace hrow hnow hcontent hack
    refine ⟨Nat.le_of_eq hnext.symm, fun i _ => by rw [hslots], hfile, fun h => by rwa [hplace],
      Nat.le_of_eq hnow.symm, fun h => by rwa [hrow], fun _ => ⟨hnext, hregistry⟩,
      fun _ _ => ⟨hrow, hcontent, hack⟩⟩
  have slot : ∀ i slot, ((s.slots i).holder = some t → False) →
      Rely strict t s (s.setSlot i slot) := by
    intro i slot hother
    refine ⟨le_rfl, fun j hj => ?_, rfl, id, le_rfl, id, fun _ => ⟨rfl, rfl⟩,
      fun _ _ => ⟨rfl, rfl, rfl⟩⟩
    have hji : j ≠ i := by
      rintro rfl
      exact hother hj
    simp [State.setSlot, hji]
  have alone : Exclusive t s → Locked v s → False := fun hex hlocked => hne (hex.unique hlocked)
  have file : ∀ s₁ : State, ∀ f, (s₁.setFile v f).files t = s₁.files t := by
    intro s₁ f
    simp [State.setFile, Ne.symm hne]
  have effect : ∀ e, (e ≠ .removeFinished v → Locked v s) → Rely strict t s (s.apply e) := by
    intro e hlocked
    have hm := apply_memory s e
    refine ⟨Nat.le_of_eq hm.next.symm, fun i _ => by rw [hm.slots], by rw [hm.files], apply_place,
      Nat.le_of_eq hm.now.symm, apply_row_none, fun _ => ⟨hm.next, hm.registry⟩, fun _ hex => ?_⟩
    by_cases he : e = .removeFinished v
    · subst he
      simp only [State.apply]
      split_ifs <;> exact ⟨rfl, rfl, rfl⟩
    · exact (alone hex (hlocked he)).elim
  cases hdoes with
  | nothing => exact ⟨halive, same _ rfl rfl rfl rfl rfl rfl rfl rfl rfl⟩
  | arrives =>
    have halive' : s.alive t = true := by simpa [Ne.symm hne] using halive
    exact ⟨halive', same _ rfl rfl rfl rfl rfl rfl rfl rfl rfl⟩
  | detaches => exact ⟨halive, same _ rfl rfl rfl rfl rfl rfl rfl rfl rfl⟩
  | makes hnone =>
    refine ⟨halive, Nat.le_succ _, fun _ _ => rfl, rfl, id, le_rfl, id, fun hex => ?_,
      fun _ _ => ⟨rfl, rfl, rfl⟩⟩
    rw [hex.registry] at hnone
    cases hnone
  | locks hfree =>
    refine ⟨halive, slot _ _ fun h => ?_⟩
    rw [hfree] at h
    cases h
  | forgets =>
    exact ⟨halive, le_rfl, fun _ _ => rfl, rfl, id, le_rfl, id,
      fun hex => (alone hex hduty.1).elim, fun _ _ => ⟨rfl, rfl, rfl⟩⟩
  | unlocks hholder =>
    exact ⟨halive, slot _ _ fun h => hne (Option.some.inj (hholder.symm.trans h))⟩
  | hashes i hashing =>
    exact ⟨halive, slot _ _ fun h => hne (Option.some.inj (hduty.1.symm.trans h))⟩
  | opens => exact ⟨halive, same _ rfl rfl rfl (file _ _) rfl rfl rfl rfl rfl⟩
  | closes => exact ⟨halive, same _ rfl rfl rfl (file _ _) rfl rfl rfl rfl rfl⟩
  | reports => exact ⟨halive, same _ rfl rfl rfl (file _ _) rfl rfl rfl rfl rfl⟩
  | takesEffect hcauses =>
    have halive' : s.alive t = true := by rwa [(apply_memory s _).alive] at halive
    exact ⟨halive', effect _ (hduty.effect hinv hcauses).1⟩
  | queues => exact ⟨halive, same _ rfl rfl rfl rfl rfl rfl rfl rfl rfl⟩
  | loses hbytes =>
    have hrely := effect _ (hduty.effect hinv (.write _ hbytes)).1
    exact ⟨halive, hrely.next, hrely.lock, (file _ _).trans hrely.file, hrely.place, hrely.now,
      hrely.row, hrely.exclusive, hrely.kept⟩

theorem release_slot (s : State) (t i : ℕ) :
    ((s.release t).slots i).hashing = (s.slots i).hashing ∧
      ((s.slots i).holder ≠ some t → (s.release t).slots i = s.slots i) := by
  simp only [State.release]
  split_ifs with h
  · exact ⟨rfl, fun hne => absurd h hne⟩
  · exact ⟨rfl, fun _ => rfl⟩

theorem Exclusive.release (h : Exclusive t s) (hne : v ≠ t) : Exclusive t (s.release v) := by
  refine ⟨h.next, h.registry, ?_⟩
  rw [(release_slot s v 0).2 (by rw [h.holder]; exact fun he => hne (Option.some.inj he).symm)]
  exact h.holder

theorem Invariant.cancel (hinv : Invariant u strict s) :
    Invariant u strict { (s.release v).setFile v none with
      alive := Function.update s.alive v false } := by
  refine ⟨fun t ht => ?_, hinv.phase, hinv.registered, fun i hi => ?_, hinv.once, ?_⟩
  · by_cases htv : t = v
    · subst htv
      exact absurd (by simp [State.setFile]) ht
    · have hfile : s.files t ≠ none := by simpa [State.setFile, State.release, htv] using ht
      have hex := (hinv.writers t hfile).release (Ne.symm htv)
      exact ⟨hex.next, hex.registry, hex.holder⟩
  · have hfresh := hinv.fresh i hi
    have hsame : (s.release v).slots i = s.slots i :=
      (release_slot s v i).2 (by rw [hfresh]; exact nofun)
    exact hsame.trans hfresh
  · intro hstrict
    exact (hinv.kept hstrict).of_same rfl (fun i => (release_slot s v i).1) rfl rfl rfl rfl

theorem Invariant.restart (hinv : Invariant u strict s) :
    Invariant u strict (s.happen .restart) := by
  refine ⟨fun t ht => absurd rfl ht, Or.inl ⟨rfl, rfl⟩, nofun, fun _ _ => rfl,
    hinv.once.happens .restart, fun hstrict => ?_⟩
  have hkept := hinv.kept hstrict
  exact ⟨rfl, hkept.counted, hkept.stored, fun _ _ => nofun, hkept.attached⟩

/-- Whatever happens beside the requests keeps the invariant. -/
theorem Invariant.happens (hinv : Invariant u strict s) (h : Happening) :
    Invariant u strict (s.happen h) := by
  cases h with
  | tick n =>
    refine ⟨fun t ht => ?_, ?_, hinv.registered, hinv.fresh, hinv.once,
      fun hstrict => (hinv.kept hstrict).of_same rfl (fun _ => rfl) rfl rfl rfl rfl⟩
    · have hex := hinv.writers t ht
      exact ⟨hex.next, hex.registry, hex.holder⟩
    · rcases hinv.phase with hnone | hone | hrow | hplace | hnow
      · exact Or.inl hnone
      · exact Or.inr (Or.inl hone)
      · exact Or.inr (Or.inr (Or.inl hrow))
      · exact Or.inr (Or.inr (Or.inr (Or.inl hplace)))
      · exact Or.inr (Or.inr (Or.inr (Or.inr (Nat.le_trans hnow (Nat.le_add_right _ _)))))
  | cancel v =>
    simp only [State.happen]
    split_ifs
    · exact hinv
    · exact hinv.cancel
  | restart => exact hinv.restart
  | land k =>
    simp only [State.happen]
    cases hlate : s.late[k]? with
    | none => exact hinv
    | some e =>
      have hlands : strict → False := by
        intro hstrict
        rw [(hinv.kept hstrict).late] at hlate
        cases hlate
      have hinv' : Invariant u strict { s with late := s.late.eraseIdx k } :=
        ⟨fun t ht => ⟨(hinv.writers t ht).next, (hinv.writers t ht).registry,
          (hinv.writers t ht).holder⟩, hinv.phase, hinv.registered, hinv.fresh, hinv.once,
          fun hstrict => (hlands hstrict).elim⟩
      exact hinv'.apply fun hstrict => (hlands hstrict).elim

/-- A request relies on what happens beside it as long as it is not ended. -/
theorem Rely.happens (hinv : Invariant u strict s) {h : Happening}
    (halive : (s.happen h).alive t = true) :
    s.alive t = true ∧ Rely strict t s (s.happen h) := by
  cases h with
  | tick n =>
    exact ⟨halive, le_rfl, fun _ _ => rfl, rfl, id, Nat.le_add_right _ _, id,
      fun _ => ⟨rfl, rfl⟩, fun _ _ => ⟨rfl, rfl, rfl⟩⟩
  | cancel v =>
    simp only [State.happen] at halive ⊢
    split_ifs at halive ⊢
    · exact ⟨halive, le_rfl, fun _ _ => rfl, rfl, id, le_rfl, id,
        fun _ => ⟨rfl, rfl⟩, fun _ _ => ⟨rfl, rfl, rfl⟩⟩
    · have hne : t ≠ v := by
        rintro rfl
        simp at halive
      have halive' : s.alive t = true := by simpa [hne] using halive
      refine ⟨halive', le_rfl, fun i hi => ?_, by simp [State.setFile, State.release, hne], id,
        le_rfl, id, fun _ => ⟨rfl, rfl⟩, fun _ _ => ⟨rfl, rfl, rfl⟩⟩
      exact (release_slot s v i).2 (by rw [hi]; exact fun he => hne (Option.some.inj he))
  | restart => cases halive
  | land k =>
    simp only [State.happen] at halive ⊢
    cases hlate : s.late[k]? with
    | none =>
      rw [hlate] at halive
      exact ⟨halive, le_rfl, fun _ _ => rfl, rfl, id, le_rfl, id,
        fun _ => ⟨rfl, rfl⟩, fun _ _ => ⟨rfl, rfl, rfl⟩⟩
    | some e =>
      rw [hlate] at halive
      have hm := apply_memory { s with late := s.late.eraseIdx k } e
      have halive' : s.alive t = true := by rwa [hm.alive] at halive
      refine ⟨halive', Nat.le_of_eq hm.next.symm, fun i _ => by rw [hm.slots], by rw [hm.files],
        fun hplace => apply_place hplace, Nat.le_of_eq hm.now.symm,
        fun hrow => apply_row_none hrow, fun _ => ⟨hm.next, hm.registry⟩, fun hstrict _ => ?_⟩
      rw [(hinv.kept hstrict).late] at hlate
      cases hlate

end YaNuget.Tus
