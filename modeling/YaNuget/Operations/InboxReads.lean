import YaNuget.Concurrency.Triples
import YaNuget.Operations.InboxScan

/-!
# What the inbox keeps

What a scan attaches was read through one handle, and has the hash that was read
through another one. But it is by their names that the scan removes the file and
its checksum file once they are attached. So these are what it has read as long
as the uploader has not changed them since.
-/
namespace YaNuget.Inbox

open Concurrency Protocol

abbrev Past := List (Event Party Call Call.Answer Choice)

abbrev Moment := World Party Call Call.Answer Choice State

/-- The scan has read the bytes one after the other, from the first one on, through one handle
that it had opened at the name. -/
inductive ReadAt (d : ℕ) (name : Text) (h : Node) : Past → Content → Prop
  | opened (o : Choice) (past : Past) :
      ReadAt d name h (⟨.scanner, .request (.openFile d name), o, .ok h⟩ :: past) []
  | read {past : Past} {got : Content} (o : Choice) (n : ℕ) (chunk : Content) :
      ReadAt d name h past got →
      ReadAt d name h (⟨.scanner, .request (.read h got.length n), o, .ok chunk⟩ :: past)
        (got ++ chunk)
  | later {past : Past} {got : Content} (e : Event Party Call Call.Answer Choice) :
      ReadAt d name h past got → ReadAt d name h (e :: past) got

/-- What is attached is what the scan has read at the file's name, and has the hash that it has
read at the name of the checksum file. -/
def Promised (site : Site) (w : Moment) : Prop :=
  ∀ a ∈ w.state.attached, (∃ h, ReadAt a.dir a.name h w.past a.bytes) ∧
    ∃ h raw, ReadAt a.dir (markerOf a.name) h w.past raw ∧
      readText raw = .ok (site.sha256 a.bytes)

/-- The removed file is the attached one, or the checksum file that names its hash. -/
def Removal.BelongsTo (site : Site) (r : Removal) (a : Attachment) : Prop :=
  r.dir = a.dir ∧ ∃ bytes, r.content = some bytes ∧
    (r.name = a.name ∧ bytes = a.bytes ∨
      r.name = markerOf a.name ∧
        readText (bytes.take maxMarkerBytes) = .ok (site.sha256 a.bytes))

/-- Each file that the scan has removed is one that it has attached, or goes with one. -/
def NothingLost (site : Site) (s : State) : Prop :=
  ∀ r ∈ s.removed, r.content = none ∨ ∃ a ∈ s.attached, r.BelongsTo site a

/-- What the scan removes it has looked at, and nobody has changed it since. -/
def undisturbed (w : Moment) (e : Event Party Call Call.Answer Choice) : Bool :=
  match e.call with
  | .request (.remove d name) => (w.state.watches d name).all fun watch => !watch.touched
  | _ => true

/-- What a call changes besides the directories. -/
inductive Part where
  | nothing
  | look (d : ℕ) (name : Text)
  | staging
  deriving DecidableEq

def Request.part : Request → Part
  | .openFile d name => .look d name
  | .createStaged => .staging
  | .writeStaged _ => .staging
  | _ => .nothing

def Call.part : Call → Part
  | .request r => r.part
  | .kind d name => .look d name
  | _ => .nothing

inductive Does (s : State) : Call → State → Prop
  | nothing (c : Call) : Does s c s
  | looks {c : Call} {d : ℕ} {name : Text} {node : Node} :
      s.disk.at? d name = some node → c.part = .look d name → Does s c (s.look d name node)
  | changes (c : Call) (disk : Disk) : Does s c (s.withDisk disk)
  | stages {c : Call} (staging : Option Content) :
      c.part = .staging → Does s c { s with staging := staging }
  | removes {d : ℕ} {name : Text} {node : Node} : s.disk.at? d name = some node →
      Does s (.request (.remove d name)) { s.withDisk (s.disk.unlink d name) with
        removed := ⟨d, name, s.disk.content node⟩ :: s.removed }
  | attaches {c : Candidate} {d : ℕ} {sha256 : Text} {size : ℕ} {bytes : Content} :
      s.staging = some bytes →
      Does s (.request (.attach c d sha256 size))
        { s with attached := ⟨d, c.name, bytes, sha256⟩ :: s.attached }

variable {site : Site} {strict : Prop} {s s' : State} {w w' : Moment} {o : Choice}

theorem answer_does {r : Request} {a : Except Failure r.Answer}
    (h : s.answer o r = some (a, s')) : Does s (.request r) s' := by
  cases r with
  | openRoot =>
    cases h
    exact .nothing _
  | openDir d name =>
    simp only [State.answer] at h
    split at h <;> cases h <;> exact .nothing _
  | openFile d name =>
    simp only [State.answer] at h
    split at h
    · cases h
      exact .nothing _
    · rename_i node hat
      split at h
      · cases h
        exact .nothing _
      · cases h
        exact .looks hat rfl
  | metadata node =>
    simp only [State.answer] at h
    split at h <;> cases h <;> exact .nothing _
  | read node offset n =>
    cases h
    exact .nothing _
  | remove d name =>
    simp only [State.answer] at h
    split at h
    · cases h
      exact .nothing _
    · cases h
      exact .nothing _
    · rename_i node hat
      cases h
      exact .removes hat
  | createNew d name =>
    simp only [State.answer] at h
    split_ifs at h
    · cases h
      exact .nothing _
    · cases h
      exact .changes _ _
  | writeAll node text =>
    simp only [State.answer] at h
    split at h
    · cases h
      exact .changes _ _
    · cases h
      exact .nothing _
  | existsIn c =>
    cases h
    exact .nothing _
  | createStagingDir =>
    cases h
    exact .nothing _
  | admission size =>
    cases h
    exact .nothing _
  | createStaged =>
    cases h
    exact .stages _ rfl
  | writeStaged chunk =>
    cases h
    exact .stages _ rfl
  | syncStaged =>
    cases h
    exact .nothing _
  | attach c d sha256 size =>
    obtain ⟨bytes, hbytes, h⟩ := Option.map_eq_some_iff.mp h
    cases h
    exact .attaches hbytes

theorem exec_does {c : Call} {a : c.Answer} (h : exec o s c = some (a, s')) : Does s c s' := by
  cases c with
  | request r =>
    cases hfails : o.fails with
    | some e =>
      simp only [exec, hfails] at h
      cases h
      exact .nothing _
    | none =>
      simp only [exec, hfails] at h
      exact answer_does h
  | readDir d =>
    cases h
    exact .nothing _
  | kind d name =>
    simp only [exec] at h
    split at h
    · rename_i node _ hat
      cases h
      exact .looks hat rfl
    · cases h
      exact .nothing _
  | now =>
    cases h
    exact .nothing _
  | upload change =>
    cases h
    exact .changes _ _

/-- What may come of a state by a call that changes only `part` besides the directories. -/
structure Later (part : Part) (w w' : Moment) : Prop where
  past : ∃ e, w'.past = e :: w.past
  watches : ∀ d name watch, part ≠ .look d name → w.state.watches d name = some watch →
    ∃ watch', w'.state.watches d name = some watch' ∧ watch'.node = watch.node ∧
      watch'.content = watch.content ∧ (watch'.touched = false → watch.touched = false)
  staging : part ≠ .staging → w'.state.staging = w.state.staging
  attached : ∀ a ∈ w.state.attached, a ∈ w'.state.attached

theorem Does.later {c : Call} (h : Does w.state c w'.state)
    (hpast : ∃ e, w'.past = e :: w.past) : Later c.part w w' := by
  obtain ⟨s, past⟩ := w
  obtain ⟨s', past'⟩ := w'
  have same : ∀ d name watch, s.watches d name = some watch → ∃ watch',
      s.watches d name = some watch' ∧ watch'.node = watch.node ∧
        watch'.content = watch.content ∧ (watch'.touched = false → watch.touched = false) :=
    fun d name watch hwatch => ⟨watch, hwatch, rfl, rfl, id⟩
  have rechecked : ∀ disk d name watch, s.watches d name = some watch → ∃ watch',
      (s.withDisk disk).watches d name = some watch' ∧ watch'.node = watch.node ∧
        watch'.content = watch.content ∧ (watch'.touched = false → watch.touched = false) := by
    intro disk d name watch hwatch
    refine ⟨watch.recheck disk d name, by simp [State.withDisk, hwatch], rfl, rfl, ?_⟩
    intro h
    exact (Bool.or_eq_false_iff.mp h).1
  cases h with
  | nothing => exact ⟨hpast, fun d name watch _ => same d name watch, fun _ => rfl, fun _ => id⟩
  | looks hat hpart =>
    rename_i d name node
    refine ⟨hpast, fun d' name' watch hne hwatch => ?_, fun _ => rfl, fun _ => id⟩
    have hkeep : (s.look d name node).watches d' name' = s.watches d' name' := by
      by_cases hd : d' = d
      · subst hd
        have hname : name' ≠ name := by
          rintro rfl
          exact hne hpart
        simp [State.look, Function.update_of_ne hname]
      · simp [State.look, Function.update_of_ne hd]
    exact ⟨watch, hkeep.trans hwatch, rfl, rfl, id⟩
  | changes _ disk =>
    exact ⟨hpast, fun d name watch _ => rechecked disk d name watch, fun _ => rfl, fun _ => id⟩
  | stages staging hpart =>
    exact ⟨hpast, fun d name watch _ => same d name watch, fun h => absurd hpart h, fun _ => id⟩
  | removes hat =>
    exact ⟨hpast, fun d name watch _ => rechecked _ d name watch, fun _ => rfl, fun _ => id⟩
  | attaches hbytes =>
    exact ⟨hpast, fun d name watch _ => same d name watch, fun _ => rfl,
      fun a => List.mem_cons_of_mem _⟩

/-- The assertion stays true whatever happens, except by the scan's own change of `part`. -/
def Lasting (part : Part) (A : Moment → Prop) : Prop := ∀ w w', Later part w w' → A w → A w'

theorem Lasting.and {part : Part} {A B : Moment → Prop} (hA : Lasting part A)
    (hB : Lasting part B) : Lasting part fun w => A w ∧ B w :=
  fun w w' h hw => ⟨hA w w' h hw.1, hB w w' h hw.2⟩

theorem Lasting.of_part {part : Part} {A : Moment → Prop} (hA : Lasting part A) :
    Lasting .nothing A := by
  intro w w' h hw
  refine hA w w' ⟨h.past, ?_, ?_, h.attached⟩ hw
  · intro d name watch _
    exact h.watches d name watch nofun
  · intro _
    exact h.staging nofun

theorem lasting_true (part : Part) : Lasting part fun _ => True := fun _ _ _ _ => trivial

theorem lasting_exists {α : Type} {part : Part} {A : α → Moment → Prop}
    (hA : ∀ a, Lasting part (A a)) : Lasting part fun w => ∃ a, A a w :=
  fun w w' h ⟨a, hw⟩ => ⟨a, hA a w w' h hw⟩

variable {d : ℕ} {name : Text} {h : Node} {part : Part}

theorem lasting_readAt {got : Content} : Lasting part fun w => ReadAt d name h w.past got := by
  intro w w' hlater hw
  obtain ⟨e, he⟩ := hlater.past
  rw [he]
  exact .later e hw

theorem lasting_staged {staging : Option Content} (hpart : part ≠ .staging) :
    Lasting part fun w => w.state.staging = staging :=
  fun _ _ hlater hw => (hlater.staging hpart).trans hw

theorem lasting_attached {φ : Attachment → Prop} :
    Lasting part fun w => ∃ a ∈ w.state.attached, φ a :=
  fun _ _ hlater ⟨a, ha, hφ⟩ => ⟨a, hlater.attached a ha, hφ⟩

/-- The scan has seen the node at the name, and as long as nothing has changed there since, its
bytes satisfy `φ`. -/
def Watched (d : ℕ) (name : Text) (h : Node) (φ : Content → Prop) (w : Moment) : Prop :=
  ∃ watch, w.state.watches d name = some watch ∧ watch.node = h ∧
    (watch.touched = false → ∀ bytes, watch.content = some bytes → φ bytes)

theorem lasting_watched {φ : Content → Prop} (hpart : part ≠ .look d name) :
    Lasting part (Watched d name h φ) := by
  rintro w w' hlater ⟨watch, hwatch, hnode, hbytes⟩
  obtain ⟨watch', hwatch', hnode', hcontent, htouched⟩ := hlater.watches d name watch hpart hwatch
  refine ⟨watch', hwatch', hnode'.trans hnode, ?_⟩
  intro huntouched
  rw [hcontent]
  exact hbytes (htouched huntouched)

theorem Watched.mono {φ ψ : Content → Prop} (hw : Watched d name h φ w)
    (himp : ∀ bytes, φ bytes → ψ bytes) : Watched d name h ψ w := by
  obtain ⟨watch, hwatch, hnode, hbytes⟩ := hw
  exact ⟨watch, hwatch, hnode, fun htouched bytes hcontent =>
    himp bytes (hbytes htouched bytes hcontent)⟩

/-- What is seen at a name and untouched stands there. -/
def Standing (s : State) : Prop :=
  ∀ d name watch, s.watches d name = some watch → watch.touched = false →
    s.disk.at? d name = some watch.node ∧ s.disk.content watch.node = watch.content

structure Invariant (site : Site) (strict : Prop) (w : Moment) : Prop where
  standing : Standing w.state
  promised : Promised site w
  lost : strict → NothingLost site w.state

/-- Any inbox, the scan at work and an uploader. -/
def protocol (site : Site) (strict : Prop) :
    Protocol Party Call Call.Answer Choice State where
  inv := Invariant site strict
  guar t w w' := t = .uploader → ∃ disk, w'.state = w.state.withDisk disk
  allow w e _ := strict → undisturbed w e = true

theorem Standing.withDisk (s : State) (disk : Disk) : Standing (s.withDisk disk) := by
  intro d name watch hwatch htouched
  obtain ⟨watch₀, -, rfl⟩ := Option.map_eq_some_iff.mp hwatch
  have hstands := (Bool.or_eq_false_iff.mp htouched).2
  rw [Bool.not_eq_false', Watch.stands, decide_eq_true_eq] at hstands
  exact hstands

theorem Standing.look {d : ℕ} {name : Text} {node : Node} (hs : Standing s)
    (hat : s.disk.at? d name = some node) : Standing (s.look d name node) := by
  intro d' name' watch hwatch htouched
  by_cases hd : d' = d
  · subst hd
    by_cases hname : name' = name
    · subst hname
      have hseen : some ⟨node, s.disk.content node, false⟩ = some watch := by
        simpa [State.look] using hwatch
      cases hseen
      exact ⟨hat, rfl⟩
    · exact hs d' name' watch (by simpa [State.look, hname] using hwatch) htouched
  · exact hs d' name' watch (by simpa [State.look, hd] using hwatch) htouched

/-- What the scan must know before a call. -/
def Duty (site : Site) (w : Moment) : Call → Prop
  | .request (.attach c d _ _) => ∀ bytes, w.state.staging = some bytes →
      (∃ h, ReadAt d c.name h w.past bytes) ∧ ∃ h raw, ReadAt d (markerOf c.name) h w.past raw ∧
        readText raw = .ok (site.sha256 bytes)
  | .request (.remove d name) => ∃ h φ, Watched d name h φ w ∧ (h = .other ∨
      ∀ bytes, φ bytes → ∃ a ∈ w.state.attached, Removal.BelongsTo site ⟨d, name, some bytes⟩ a)
  | _ => True

theorem Promised.later {part : Part} (hp : Promised site w) (hlater : Later part w w')
    (hattached : w'.state.attached = w.state.attached) : Promised site w' := by
  intro a ha
  obtain ⟨⟨h, hread⟩, h', raw, hraw, hnamed⟩ := hp a (hattached ▸ ha)
  exact ⟨⟨h, lasting_readAt w w' hlater hread⟩, h', raw, lasting_readAt w w' hlater hraw, hnamed⟩

/-- A file that is removed undisturbed is the one that the scan has seen. -/
theorem removed_belongs {e : Event Party Call Call.Answer Choice} {node : Node}
    (hs : Standing w.state) (hcall : e.call = .request (.remove d name))
    (hduty : Duty site w (.request (.remove d name))) (hun : undisturbed w e = true)
    (hat : w.state.disk.at? d name = some node) :
    w.state.disk.content node = none ∨
      ∃ a ∈ w.state.attached, Removal.BelongsTo site ⟨d, name, w.state.disk.content node⟩ a := by
  obtain ⟨h, φ, ⟨watch, hwatch, rfl, hbytes⟩, hknown⟩ := hduty
  have htouched : watch.touched = false := by simpa [undisturbed, hcall, hwatch] using hun
  obtain ⟨hat', hcontent⟩ := hs d name watch hwatch htouched
  obtain rfl : watch.node = node := Option.some.inj (hat'.symm.trans hat)
  cases hfound : w.state.disk.content watch.node with
  | none => exact Or.inl rfl
  | some bytes =>
    rcases hknown with hother | hknown
    · rw [hother] at hfound
      cases hfound
    · exact Or.inr (hknown bytes (hbytes htouched bytes (hcontent.symm.trans hfound)))

/-- A call before which the scan knows what it must keeps the invariant. -/
theorem Invariant.step {e : Event Party Call Call.Answer Choice} (hinv : Invariant site strict w)
    (hdoes : Does w.state e.call w'.state) (hpast : w'.past = e :: w.past)
    (hduty : Duty site w e.call) (hallow : strict → undisturbed w e = true) :
    Invariant site strict w' := by
  have hlater : Later e.call.part w w' := hdoes.later ⟨e, hpast⟩
  obtain ⟨s, past⟩ := w
  obtain ⟨s', past'⟩ := w'
  obtain ⟨t, c, o, r⟩ := e
  cases hdoes with
  | nothing => exact ⟨hinv.standing, hinv.promised.later hlater rfl, hinv.lost⟩
  | looks hat => exact ⟨hinv.standing.look hat, hinv.promised.later hlater rfl, hinv.lost⟩
  | changes _ disk =>
    exact ⟨Standing.withDisk s disk, hinv.promised.later hlater rfl, hinv.lost⟩
  | stages staging => exact ⟨hinv.standing, hinv.promised.later hlater rfl, hinv.lost⟩
  | removes hat =>
    refine ⟨Standing.withDisk s _, hinv.promised.later hlater rfl, fun hstrict removal hremoval => ?_⟩
    rcases List.mem_cons.mp hremoval with rfl | hbefore
    · exact removed_belongs hinv.standing rfl hduty (hallow hstrict) hat
    · exact hinv.lost hstrict removal hbefore
  | attaches hbytes =>
    refine ⟨hinv.standing, fun a ha => ?_, fun hstrict removal hremoval => ?_⟩
    · rcases List.mem_cons.mp ha with rfl | hbefore
      · obtain ⟨⟨h, hread⟩, h', raw, hraw, hnamed⟩ := hduty _ hbytes
        exact ⟨⟨h, lasting_readAt _ _ hlater hread⟩, h', raw,
          lasting_readAt _ _ hlater hraw, hnamed⟩
      · obtain ⟨⟨h, hread⟩, h', raw, hraw, hnamed⟩ := hinv.promised a hbefore
        exact ⟨⟨h, lasting_readAt _ _ hlater hread⟩, h', raw,
          lasting_readAt _ _ hlater hraw, hnamed⟩
    · rcases hinv.lost hstrict removal hremoval with hnone | ⟨a, ha, hbelongs⟩
      · exact Or.inl hnone
      · exact Or.inr ⟨a, List.mem_cons_of_mem _ ha, hbelongs⟩

theorem moves_later {u : Party} (hu : u ≠ .scanner)
    (hm : Moves machine (protocol site strict) u w w') : Later .nothing w w' := by
  obtain ⟨c, o, r, hperform, -, -, -, hguar⟩ := hm
  have huploader : u = .uploader := by
    cases u with
    | scanner => exact absurd rfl hu
    | uploader => rfl
  obtain ⟨disk, hdisk⟩ := hguar huploader
  have hpast := (machine.perform_eq_some.mp hperform).2
  refine Does.later (c := .now) ?_ ⟨_, hpast⟩
  rw [hdisk]
  exact .changes _ disk

theorem Lasting.stable {A : Moment → Prop} (hA : Lasting part A) :
    Stable machine (protocol site strict) .scanner A :=
  fun _ hu w w' hm hw => hA.of_part w w' (moves_later hu hm) hw

theorem performed {t : Party} {c : Call} {r : c.Answer}
    (hp : machine.perform t c o w = some (r, w')) :
    Does w.state c w'.state ∧ w'.past = ⟨t, c, o, r⟩ :: w.past := by
  obtain ⟨hexec, hpast⟩ := machine.perform_eq_some.mp hp
  exact ⟨exec_does hexec, hpast⟩

theorem uploader_safe (changes : List (Disk → Disk)) (w : Moment) :
    Safe machine (protocol site strict) .uploader (uploads changes).run
      (fun _ _ => True) w := by
  have hJ : Fallible.Closed (fun {α : Type} (x : Op α) =>
      x.run.Calls fun c => ∃ change, c = .upload change) := Fallible.closed_calls _
  have hcalls : (uploads changes).run.Calls fun c => ∃ change, c = .upload change :=
    hJ.forM fun change _ => ⟨⟨change, rfl⟩, fun _ => trivial⟩
  refine Safe.of_calls (A := fun _ => True) (fun _ _ _ _ _ _ => trivial) ?_ hcalls trivial
  rintro _ ⟨change, rfl⟩ w - hinv o r w' hp hallow
  obtain ⟨hdoes, hpast⟩ := performed hp
  have hexec := (machine.perform_eq_some.mp hp).1
  cases hstate : w' with
  | mk s' past' =>
    subst hstate
    have hs' : s' = w.state.withDisk (change w.state.disk) := by
      cases hexec
      rfl
    exact ⟨hinv.step hdoes hpast trivial hallow, fun _ => ⟨_, hs'⟩, trivial⟩

section Calls

variable {A : Moment → Prop} {c : Call} {r : Request} {E : Moment → Prop}

theorem Safe.performs {B : c.Answer → Moment → Prop} (hA : Lasting .nothing A)
    (hduty : ∀ w, A w → Duty site w c)
    (hB : ∀ w o a w', machine.perform .scanner c o w = some (a, w') →
      Standing w.state → A w → Later c.part w w' → B a w') (hw : A w) :
    Safe machine (protocol site strict) .scanner (Program.perform c) B w := by
  refine Safe.call hA.stable hw fun w hw hinv o a w' hp hallow => ?_
  obtain ⟨hdoes, hpast⟩ := performed hp
  have hinv' : Invariant site strict w' := hinv.step hdoes hpast (hduty w hw) hallow
  exact ⟨hinv', nofun, hB w o a w' hp hinv.standing hw (hdoes.later ⟨_, hpast⟩)⟩

theorem ask_spec {B : c.Answer → Moment → Prop} (hA : Lasting .nothing A)
    (hduty : ∀ w, A w → Duty site w c)
    (hB : ∀ w o a w', machine.perform .scanner c o w = some (a, w') →
      Standing w.state → A w → Later c.part w w' → B a w') :
    Triple machine (protocol site strict) .scanner A (ask c) B E := by
  intro w hw
  exact Safe.bind ((Safe.performs hA hduty hB hw).mono fun _ _ h => h)

/-- A call of the scan that may fail. -/
theorem request_spec {B : r.Answer → Moment → Prop} (hA : Lasting .nothing A)
    (hduty : ∀ w, A w → Duty site w (.request r))
    (hB : ∀ w o a w', machine.perform .scanner (.request r) o w = some (.ok a, w') →
      Standing w.state → A w → Later r.part w w' → B a w') :
    Triple machine (protocol site strict) .scanner A (request r) B fun _ => True := by
  intro w hw
  refine Safe.performs (c := .request r) hA hduty (fun w o a w' hp hs hw hlater => ?_) hw
  cases a with
  | ok a => exact hB w o a w' hp hs hw hlater
  | error e => trivial

theorem request_tries (hA : Lasting r.part A) (hduty : ∀ w, A w → Duty site w (.request r)) :
    Triple machine (protocol site strict) .scanner A (request r) (fun _ => A) A := by
  intro w hw
  refine Safe.performs (c := .request r) hA.of_part hduty (fun w o a w' _ _ hw hlater => ?_) hw
  cases a with
  | ok a => exact hA w w' hlater hw
  | error e => exact hA w w' hlater hw

theorem request_keeps (hA : Lasting r.part A) (hduty : ∀ w, A w → Duty site w (.request r)) :
    Triple machine (protocol site strict) .scanner A (request r) (fun _ => A) fun _ => True :=
  (request_tries hA hduty).mono (fun _ hw => hw) (fun _ _ hw => hw) fun _ _ => trivial

theorem ask_keeps (hA : Lasting c.part A) (hduty : ∀ w, A w → Duty site w c) :
    Triple machine (protocol site strict) .scanner A (ask c) (fun _ => A) E :=
  ask_spec hA.of_part hduty fun w _ _ w' _ _ hw hlater => hA w w' hlater hw

theorem ofExcept_spec {α : Type} {result : Except Failure α} {B : α → Moment → Prop}
    (h : ∀ a w, result = .ok a → A w → B a w) :
    Triple machine (protocol site strict) .scanner A (ofExcept result) B fun _ => True := by
  cases result with
  | ok a => exact Triple.pure fun w hw => h a w rfl hw
  | error e => exact Triple.throw fun _ _ => trivial

theorem refuseIf_spec {refused : Bool} {e : Failure} :
    Triple machine (protocol site strict) .scanner A (refuseIf refused e)
      (fun _ w => refused = false ∧ A w) fun _ => True := by
  cases refused with
  | true => exact Triple.throw fun _ _ => trivial
  | false => exact Triple.pure fun _ hw => ⟨rfl, hw⟩

end Calls

theorem look_watched {d : ℕ} {name : Text} {node : Node} (s : State) (past : Past) :
    Watched d name node (fun _ => True) ⟨s.look d name node, past⟩ :=
  ⟨⟨node, s.disk.content node, false⟩, by simp [State.look], rfl, fun _ _ _ => trivial⟩

theorem openFile_state {a : Node} (hexec : exec o s (.request (.openFile d name)) = some (.ok a, s')) :
    s' = s.look d name a := by
  cases hfails : o.fails with
  | some e => simp [exec, hfails] at hexec
  | none =>
    simp only [exec, hfails, State.answer] at hexec
    split at hexec
    · cases hexec
    · split_ifs at hexec
      · cases hexec
      · cases hexec
        rfl

theorem openRegular_spec {A : Moment → Prop} (hA : Lasting (.look d name) A) :
    Triple machine (protocol site strict) .scanner A (openRegular d name)
      (fun h w => A w ∧ ReadAt d name h w.past [] ∧ Watched d name h (fun _ => True) w)
      fun _ => True := by
  have opened : Triple machine (protocol site strict) .scanner A (request (.openFile d name))
      (fun h w => A w ∧ ReadAt d name h w.past [] ∧ Watched d name h (fun _ => True) w)
      fun _ => True := by
    apply request_spec (r := .openFile d name) hA.of_part fun _ _ => trivial
    intro w o h w' hp _ hw hlater
    obtain ⟨hexec, hpast⟩ := machine.perform_eq_some.mp hp
    refine ⟨hA w w' hlater hw, ?_, ?_⟩
    · rw [hpast]
      exact .opened o w.past
    · have hstate := openFile_state hexec
      obtain ⟨s', past'⟩ := w'
      obtain rfl := hstate
      exact look_watched w.state past'
  apply opened.attempt.bind
  intro result
  cases result with
  | error e =>
    apply Triple.bind (ask_keeps (c := .kind d name) (lasting_true _) fun _ _ => trivial)
    intro kind
    cases kind <;> exact Triple.throw fun _ _ => trivial
  | ok h =>
    have lasting : Lasting .nothing fun w =>
        A w ∧ ReadAt d name h w.past [] ∧ Watched d name h (fun _ => True) w :=
      hA.of_part.and (lasting_readAt.and (lasting_watched nofun))
    apply Triple.bind (request_keeps (r := .metadata h) lasting fun _ _ => trivial)
    intro found
    split_ifs
    · exact Triple.pure fun _ hw => hw
    · exact Triple.throw fun _ _ => trivial

/-- So much has been read at the name, and as long as nothing has changed there since, its bytes
satisfy `φ`. -/
def Reading (d : ℕ) (name : Text) (h : Node) (φ : Content → Prop) (got : Content) (w : Moment) :
    Prop :=
  ReadAt d name h w.past got ∧ Watched d name h φ w

theorem lasting_reading {φ : Content → Prop} {got : Content} (hpart : part ≠ .look d name) :
    Lasting part (Reading d name h φ got) :=
  lasting_readAt.and (lasting_watched hpart)

theorem Reading.mono {φ ψ : Content → Prop} {got : Content} (hw : Reading d name h φ got w)
    (himp : ∀ bytes, φ bytes → ψ bytes) : Reading d name h ψ got w :=
  ⟨hw.1, hw.2.mono himp⟩

/-- As much has been read as was asked for. -/
theorem Reading.full {ψ : Content → Prop} {got : Content} {limit : ℕ}
    (hw : Reading d name h (fun bytes => ψ bytes ∧ got <+: bytes) got w)
    (hlen : got.length = limit) :
    Reading d name h (fun bytes => ψ bytes ∧ got = bytes.take limit) got w := by
  apply hw.mono
  intro bytes hbytes
  rw [← hlen]
  exact ⟨hbytes.1, List.prefix_iff_eq_take.mp hbytes.2⟩

theorem read_exec {off n : ℕ} {chunk : Content}
    (hexec : exec o s (.request (.read h off n)) = some (.ok chunk, s')) :
    s' = s ∧ chunk = (((s.disk.content h).getD []).drop off).take (min n (o.count + 1)) := by
  cases hfails : o.fails with
  | some e => simp [exec, hfails] at hexec
  | none =>
    simp only [exec, hfails, State.answer] at hexec
    cases hexec
    exact ⟨rfl, rfl⟩

theorem piece_read {bytes got chunk : Content} {n k : ℕ} (hgot : got <+: bytes)
    (hchunk : chunk = (bytes.drop got.length).take (min n (k + 1))) :
    got ++ chunk <+: bytes ∧ (0 < n → chunk = [] → bytes = got) := by
  obtain ⟨rest, rfl⟩ := hgot
  rw [List.drop_left] at hchunk
  subst hchunk
  refine ⟨List.prefix_append_right_inj got |>.mpr (List.take_prefix _ _), fun hn hempty => ?_⟩
  rcases List.take_eq_nil_iff.mp hempty with hzero | hrest
  · omega
  · rw [hrest, List.append_nil]

theorem read_spec {I : Moment → Prop} (hI : Lasting .nothing I) {ψ : Content → Prop}
    {got : Content} {n : ℕ} :
    Triple machine (protocol site strict) .scanner
      (fun w => I w ∧ Reading d name h (fun bytes => ψ bytes ∧ got <+: bytes) got w)
      (request (.read h got.length n))
      (fun chunk w => chunk.length ≤ n ∧ I w ∧ Reading d name h (fun bytes => ψ bytes ∧
        got ++ chunk <+: bytes ∧ (0 < n → chunk = [] → bytes = got)) (got ++ chunk) w)
      fun _ => True := by
  apply request_spec (r := .read h got.length n) (hI.and (lasting_reading nofun)) fun _ _ => trivial
  intro w o chunk w' hp hs hw hlater
  obtain ⟨hexec, hpast⟩ := machine.perform_eq_some.mp hp
  obtain ⟨hstate, hchunk⟩ := read_exec hexec
  refine ⟨?_, hI w w' hlater hw.1, ?_, ?_⟩
  · rw [hchunk, List.length_take]
    omega
  · rw [hpast]
    exact .read o n chunk hw.2.1
  · obtain ⟨watch, hwatch, hnode, hbytes⟩ := hw.2.2
    refine ⟨watch, by rw [hstate]; exact hwatch, hnode, fun htouched bytes hcontent => ?_⟩
    obtain ⟨hψ, hgot⟩ := hbytes htouched bytes hcontent
    have hfound : w.state.disk.content h = some bytes := by
      rw [← hnode, (hs d name watch hwatch htouched).2, hcontent]
    rw [hfound, Option.getD_some] at hchunk
    exact ⟨hψ, piece_read hgot hchunk⟩

/-- What is drained is the part of the file that was asked for, as long as the file has not
changed in between. -/
theorem drain_spec {each : Content → Op Unit} {I : Content → Moment → Prop} {limit : ℕ}
    {ψ : Content → Prop} (hI : ∀ got, Lasting .nothing (I got))
    (heach : ∀ got chunk B, Lasting .staging B →
      Triple machine (protocol site strict) .scanner (fun w => I got w ∧ B w) (each chunk)
        (fun _ w => I (got ++ chunk) w ∧ B w) fun _ => True)
    {fuel : ℕ} {got : Content} (hfuel : limit ≤ got.length + fuel) (hle : got.length ≤ limit) :
    Triple machine (protocol site strict) .scanner
      (fun w => I got w ∧ Reading d name h (fun bytes => ψ bytes ∧ got <+: bytes) got w)
      (drain h each limit fuel got)
      (fun out w => I out w ∧
        Reading d name h (fun bytes => ψ bytes ∧ out = bytes.take limit) out w)
      fun _ => True := by
  induction fuel generalizing got with
  | zero => exact Triple.pure fun w hw => ⟨hw.1, hw.2.full (by omega)⟩
  | succ fuel ih =>
    unfold drain
    split_ifs with hlimit
    · exact Triple.pure fun w hw => ⟨hw.1, hw.2.full (by omega)⟩
    · apply (read_spec (hI got)).bind
      intro chunk
      apply Triple.of_fact
      intro hchunk
      split_ifs with hempty
      · have hnil : chunk = [] := List.isEmpty_iff.mp hempty
        subst hnil
        refine Triple.pure fun w hw => ⟨hw.1, ?_, hw.2.2.mono fun bytes hbytes => ?_⟩
        · simpa using hw.2.1
        · have hend : bytes = got := hbytes.2.2 (by unfold bufferSize; omega) rfl
          subst hend
          exact ⟨hbytes.1, (List.take_of_length_le hle).symm⟩
      · have hpos : 0 < chunk.length := by
          rw [List.length_pos_iff]
          intro hnil
          exact hempty (List.isEmpty_iff.mpr hnil)
        have hmore : (got ++ chunk).length = got.length + chunk.length := List.length_append
        apply ((heach got chunk _ (lasting_reading nofun)).pre fun w hw => ⟨hw.1, hw.2⟩).bind
        intro _
        have hrest : limit ≤ (got ++ chunk).length + fuel := by omega
        apply (ih hrest (by omega)).pre
        intro w hw
        exact ⟨hw.1, hw.2.mono fun bytes hbytes => ⟨hbytes.1, hbytes.2.1⟩⟩

def Named (d : ℕ) (name sha256 : Text) (w : Moment) : Prop :=
  ∃ h raw, readText raw = .ok sha256 ∧
    Reading d name h (fun bytes => raw = bytes.take maxMarkerBytes) raw w

theorem lasting_named {sha256 : Text} (hpart : part ≠ .look d name) :
    Lasting part (Named d name sha256) := by
  rintro w w' hlater ⟨h, raw, hraw, hw⟩
  exact ⟨h, raw, hraw, lasting_reading hpart w w' hlater hw⟩

theorem readMarker_spec :
    Triple machine (protocol site strict) .scanner
      (fun w => ReadAt d name h w.past [] ∧ Watched d name h (fun _ => True) w)
      (readMarker h) (Named d name) fun _ => True := by
  have drained : Triple machine (protocol site strict) .scanner
      (fun w => True ∧ Reading d name h (fun bytes => True ∧ [] <+: bytes) [] w)
      (drain h (fun _ => pure ()) maxMarkerBytes maxMarkerBytes [])
      (fun out w => True ∧
        Reading d name h (fun bytes => True ∧ out = bytes.take maxMarkerBytes) out w)
      fun _ => True := by
    apply drain_spec (I := fun _ _ => True) (fun _ => lasting_true _)
    · intro got chunk B _
      exact Triple.pure fun _ hw => hw
    · simp
    · simp
  unfold readMarker
  apply (drained.attempt.pre fun w hw => ?_).bind
  · intro result
    cases result with
    | error e => exact Triple.throw fun _ _ => trivial
    | ok raw =>
      apply ofExcept_spec
      intro sha256 w hraw hw
      exact ⟨h, raw, hraw, hw.2.mono fun bytes hbytes => hbytes.2⟩
  · exact ⟨trivial, hw.1, hw.2.mono fun bytes _ => ⟨trivial, List.nil_prefix⟩⟩

/-- The staged copy is what has been read at the name, and as long as nothing has changed there
since, it is the whole file. -/
def Staged (d : ℕ) (name : Text) (bytes : Content) (w : Moment) : Prop :=
  w.state.staging = some bytes ∧ ∃ h, Reading d name h (fun found => found = bytes) bytes w

theorem lasting_staging {bytes : Content} (hlook : part ≠ .look d name) (hpart : part ≠ .staging) :
    Lasting part (Staged d name bytes) :=
  (lasting_staged hpart).and (lasting_exists fun _ => lasting_reading hlook)

theorem stage_exec {r : Request} {a : r.Answer}
    (hexec : exec o s (.request r) = some (.ok a, s')) :
    (r = .createStaged → s'.staging = some []) ∧
      ∀ chunk, r = .writeStaged chunk → s'.staging = s.staging.map (· ++ chunk) := by
  cases hfails : o.fails with
  | some e => simp [exec, hfails] at hexec
  | none =>
    simp only [exec, hfails] at hexec
    constructor
    · rintro rfl
      cases hexec
      rfl
    · rintro chunk rfl
      cases hexec
      rfl

theorem copyHashed_spec {A : Moment → Prop} {len : ℕ} (hA : Lasting .staging A) :
    Triple machine (protocol site strict) .scanner
      (fun w => A w ∧ Reading d name h (fun bytes => bytes.length = len) [] w)
      (copyHashed site h len)
      (fun copy w => ∃ bytes, copy = (bytes.length, site.sha256 bytes) ∧ A w ∧
        Staged d name bytes w)
      fun _ => True := by
  have created : Triple machine (protocol site strict) .scanner
      (fun w => A w ∧ Reading d name h (fun bytes => bytes.length = len) [] w)
      (request .createStaged)
      (fun _ w => (A w ∧ w.state.staging = some []) ∧
        Reading d name h (fun bytes => bytes.length = len ∧ [] <+: bytes) [] w)
      fun _ => True := by
    apply request_spec (r := .createStaged) (hA.of_part.and (lasting_reading nofun)) fun _ _ =>
      trivial
    intro w o a w' hp _ hw hlater
    have hkeeps : Lasting .staging (Reading d name h (fun bytes => bytes.length = len) []) :=
      lasting_reading nofun
    refine ⟨⟨hA w w' hlater hw.1, ?_⟩, (hkeeps w w' hlater hw.2).mono
      fun bytes hbytes => ⟨hbytes, List.nil_prefix⟩⟩
    rw [(stage_exec (machine.perform_eq_some.mp hp).1).1 rfl]
  have drained : Triple machine (protocol site strict) .scanner
      (fun w => (A w ∧ w.state.staging = some []) ∧
        Reading d name h (fun bytes => bytes.length = len ∧ [] <+: bytes) [] w)
      (drain h (fun chunk => request (.writeStaged chunk)) len len [])
      (fun out w => (A w ∧ w.state.staging = some out) ∧
        Reading d name h (fun bytes => bytes.length = len ∧ out = bytes.take len) out w)
      fun _ => True := by
    apply drain_spec (I := fun got w => A w ∧ w.state.staging = some got)
      (fun _ => hA.of_part.and (lasting_staged nofun))
    · intro got chunk B hB
      have lasting : Lasting .nothing fun w => (A w ∧ w.state.staging = some got) ∧ B w :=
        (hA.of_part.and (lasting_staged nofun)).and hB.of_part
      apply request_spec (r := .writeStaged chunk) lasting fun _ _ => trivial
      intro w o a w' hp _ hw hlater
      refine ⟨⟨hA w w' hlater hw.1.1, ?_⟩, hB w w' hlater hw.2⟩
      rw [(stage_exec (machine.perform_eq_some.mp hp).1).2 chunk rfl, hw.1.2]
      rfl
    · simp
    · simp
  have lasting : ∀ copied, Lasting .nothing fun w => (A w ∧ w.state.staging = some copied) ∧
      Reading d name h (fun bytes => bytes.length = len ∧ copied = bytes.take len) copied w :=
    fun copied => (hA.of_part.and (lasting_staged nofun)).and (lasting_reading nofun)
  apply created.bind
  intro _
  apply drained.bind
  intro copied
  apply (request_keeps (r := .syncStaged) (lasting copied) fun _ _ => trivial).bind
  intro _
  refine Triple.pure fun w hw => ⟨copied, rfl, hw.1.1, hw.1.2, h, hw.2.mono fun bytes hbytes => ?_⟩
  rw [hbytes.2, ← hbytes.1, List.take_length]

end YaNuget.Inbox
